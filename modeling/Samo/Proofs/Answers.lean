import Samo.Check.Declaration
import Samo.Proofs.Typing

/-!
# Typed expressions are accepted

The other direction of `Typing`. An expression that has a type by the rules, and in whose arguments
no known integer is divided by a known zero, is accepted at that type without a report, and a call
that has a type is resolved to it (`Expr.Asked.settles`). For a call to a built-in function the
types of the arguments have to select one overload, so no two overloads may have the same
parameters; a library that is not refused has none (`Registry.distinct_ofLibrary`). What one
signature changes in a registry is said once (`Registry.register_cases`).
-/

namespace Samo

/-! ## Leaves of one type -/

theorem Tally.add_replicate (n : Nat) (type : Ty) :
    add ⟨List.replicate n type, type, n⟩ type = ⟨List.replicate (n + 1) type, type, n + 1⟩ := by
  unfold add
  rw [List.count_replicate_self]
  exact if_pos (Nat.lt_succ_self n)

theorem Tally.foldl_replicate (k n : Nat) (type : Ty) :
    (List.replicate k type).foldl add ⟨List.replicate n type, type, n⟩ =
      ⟨List.replicate (n + k) type, type, n + k⟩ := by
  induction k generalizing n with
  | zero => rfl
  | succ k ih =>
      rw [List.replicate_succ, List.foldl_cons, add_replicate, ih, Nat.add_right_comm,
        Nat.add_assoc]

/-- Leaves that all have one type say that type. -/
theorem Detection.ofLeaves_replicate (n : Nat) (type : Ty) :
    ofLeaves (List.replicate (n + 1) type) = ⟨true, type⟩ := by
  have tally : Tally.ofLeaves (List.replicate (n + 1) type) =
      ⟨List.replicate (1 + n) type, type, 1 + n⟩ := Tally.foldl_replicate n 1 type
  unfold ofLeaves
  rw [tally]
  simp [Nat.add_comm]

/-! ## Overloads -/

/-- No two overloads of a name have the same parameters. -/
def Registry.Distinct (r : Registry) : Prop :=
  ∀ name, ((r.overloads name).map Function.paramTypes).Nodup

theorem filter_eq_singleton {α β : Type} [DecidableEq β] {g : α → β} {l : List α}
    (distinct : (l.map g).Nodup) {a : α} (member : a ∈ l) : l.filter (g · = g a) = [a] := by
  induction l with
  | nil => cases member
  | cons x l ih =>
      rw [List.map_cons, List.nodup_cons] at distinct
      rcases List.mem_cons.mp member with rfl | member
      · have others : l.filter (g · = g a) = [] := by
          refine List.filter_eq_nil_iff.mpr fun y listed same => distinct.1 ?_
          rw [← of_decide_eq_true same]
          exact List.mem_map_of_mem listed
        rw [List.filter_cons_of_pos (by simp), others]
      · have other : g x ≠ g a := fun same => distinct.1 (same ▸ List.mem_map_of_mem member)
        rw [List.filter_cons_of_neg (by simpa using other), ih distinct.2 member]

theorem Ty.ty_of_result? {t : Ty} {type : TypeName} (result : t.result? = some type) :
    type.ty = t := by
  cases t <;> cases result <;> rfl

namespace Signature

/-- A function has the name and the types that a signature lists. -/
structure Describes (s : Signature) (f : Function) : Prop where
  name : f.name = s.name
  params : f.paramTys = s.params
  returns : f.returns.ty = s.returns

theorem types_parameters {name : String} {index : Nat} {ts : List Ty} {params : List Parameter}
    (made : parameters name index ts = .ok params) : params.map (Ty.value ·.type) = ts := by
  induction ts generalizing index params with
  | nil =>
      cases made
      rfl
  | cons t ts ih =>
      unfold parameters at made
      cases value : t.value? with
      | none =>
          rw [value] at made
          cases made
      | some type =>
          rw [value] at made
          cases tail : parameters name (index + 1) ts with
          | error e =>
              rw [tail] at made
              cases made
          | ok rest =>
              rw [tail] at made
              cases made
              rw [List.map_cons, ih tail, Ty.value?_eq_some_iff.mp value]

theorem describes_function {s : Signature} {f : Function} (made : s.function = .ok f) :
    s.Describes f := by
  unfold function at made
  cases listed : parameters s.name 0 s.params with
  | error e =>
      rw [listed] at made
      cases made
  | ok params =>
      rw [listed] at made
      dsimp only [bind, Except.bind, Function.create] at made
      cases result : s.returns.result? with
      | none =>
          rw [result] at made
          cases made
      | some type =>
          rw [result] at made
          cases made
          refine ⟨rfl, ?_, Ty.ty_of_result? result⟩
          rw [← types_parameters listed, Function.paramTys, Function.paramTypes, List.map_map]
          rfl

end Signature

namespace Registry

/-- The parameters of an overload select it. -/
theorem matching?_of_mem {r : Registry} (distinct : r.Distinct) {name : String} {f : Function}
    (member : f ∈ r.overloads name) :
    r.matching? name (paramDescriptor (f.paramTypes.map .value)) = .ok (some f) := by
  unfold matching?
  rw [filter_descriptor, filter_eq_singleton (distinct name) member]

theorem lookup_extend (r : Registry) (f : Function) (name : String) :
    (r.extend f).overloads? name =
      (r.overloads? name).map fun o => if name = f.name then o.add f else o := by
  obtain ⟨groups⟩ := r
  show List.lookup name (groups.map _) = (List.lookup name groups).map _
  induction groups with
  | nil => rfl
  | cons g groups ih =>
      obtain ⟨key, o⟩ := g
      rw [List.map_cons, List.lookup_cons, List.lookup_cons]
      by_cases same : name = key
      · subst same
        simp
      · simp only [beq_false_of_ne same]
        exact ih

theorem overloads_extend (r : Registry) (f : Function) (name : String) :
    (r.extend f).overloads name =
      if name = f.name ∧ (r.overloads? name).isSome = true then r.overloads name ++ [f]
      else r.overloads name := by
  unfold overloads
  rw [lookup_extend]
  cases r.overloads? name with
  | none => simp
  | some o =>
      by_cases same : name = f.name
      · simp [same, Overloads.add, Overloads.all]
      · simp [same]

/-- What the overloads of its name ask of one more. -/
structure Admits (r : Registry) (f : Function) : Prop where
  result : ∀ g ∈ (r.overloads f.name).head?, g.returns = f.returns
  params : ∀ g ∈ r.overloads f.name, g.paramTypes ≠ f.paramTypes

/-- What one more overload changes: it is the last one of its name, and a new name is the last. -/
structure Gains (r : Registry) (f : Function) (r' : Registry) : Prop where
  overloads : ∀ name, r'.overloads name =
    if name = f.name then r.overloads name ++ [f] else r.overloads name
  names : r'.names = if f.name ∈ r.names then r.names else r.names ++ [f.name]

theorem contains_iff {r : Registry} {name : String} : r.contains name = true ↔ name ∈ r.names := by
  obtain ⟨groups⟩ := r
  show (groups.lookup name).isSome = true ↔ name ∈ groups.map (·.1)
  induction groups with
  | nil => simp
  | cons g groups ih =>
      obtain ⟨key, o⟩ := g
      rw [List.lookup_cons, List.map_cons, List.mem_cons]
      by_cases same : name = key
      · simp [same]
      · simp [same, beq_false_of_ne same, ih]

theorem gains_group {r : Registry} {f : Function} (new : r.overloads? f.name = none) :
    r.Gains f ⟨r.groups ++ [(f.name, ⟨f, []⟩)]⟩ := by
  have unlisted : f.name ∉ r.names := by
    rw [← contains_iff, contains, new]
    exact Bool.false_ne_true
  refine ⟨fun name => ?_, by rw [if_neg unlisted]; exact List.map_append⟩
  show ((r.groups ++ [(f.name, (⟨f, []⟩ : Overloads))]).lookup name).elim [] Overloads.all = _
  rw [List.lookup_append]
  by_cases same : name = f.name
  · subst same
    rw [if_pos rfl, overloads, new, show List.lookup f.name r.groups = none from new]
    simp [Overloads.all]
  · rw [if_neg same, List.lookup_cons, beq_false_of_ne same]
    simp [overloads, overloads?]

theorem gains_extend {r : Registry} {f : Function} (known : r.contains f.name = true) :
    r.Gains f (r.extend f) := by
  refine ⟨fun name => ?_, ?_⟩
  · rw [overloads_extend]
    by_cases same : name = f.name
    · subst same
      rw [if_pos ⟨rfl, known⟩, if_pos rfl]
    · rw [if_neg fun both => same both.1, if_neg same]
  · rw [if_pos (contains_iff.mp known)]
    exact List.map_map

/-- A signature of a function is registered if the overloads of the name admit it. -/
theorem register_cases (r : Registry) {s : Signature} {f : Function} (made : s.function = .ok f) :
    (r.Admits f ∧ ∃ r', r.register s = .ok r' ∧ r.Gains f r') ∨
      (¬ r.Admits f ∧ ∃ e, r.register s = .error e) := by
  have describes := Signature.describes_function made
  unfold register
  rw [made]
  dsimp only [bind, Except.bind]
  rw [← describes.name, ← describes.params]
  cases known : r.overloads? f.name with
  | none =>
      have none : r.overloads f.name = [] := by rw [overloads, known]; rfl
      refine .inl ⟨⟨?_, ?_⟩, _, rfl, gains_group known⟩
      · simp [none]
      · simp [none]
  | some o =>
      have listed : r.overloads f.name = o.all := by rw [overloads, known]; rfl
      dsimp only
      split
      · next differs =>
        refine .inr ⟨fun admits => differs (admits.result o.first ?_), _, rfl⟩
        rw [listed]
        rfl
      split
      · next double =>
        obtain ⟨g, member, same⟩ := List.any_eq_true.mp double
        refine .inr ⟨fun admits => ?_, _, rfl⟩
        exact admits.params g (listed ▸ member)
          (Function.paramDescriptor_eq_iff.mp (of_decide_eq_true same))
      · next agrees new =>
        refine .inl ⟨⟨fun g head => ?_, fun g member same => new ?_⟩, _, rfl, gains_extend ?_⟩
        · rw [listed] at head
          cases head
          exact Decidable.not_not.mp agrees
        · have equal := Function.paramDescriptor_eq_iff.mpr same
          exact List.any_eq_true.mpr ⟨g, listed ▸ member, decide_eq_true equal⟩
        · rw [contains, known]
          rfl

/-- A signature that is not refused has parameters of its own. -/
theorem Distinct.register {r r' : Registry} (distinct : r.Distinct) {s : Signature}
    (added : r.register s = .ok r') : r'.Distinct := by
  cases made : s.function with
  | error e =>
      rw [Registry.register, made] at added
      cases added
  | ok f =>
      rcases r.register_cases made with ⟨admits, next, ok, gains⟩ | ⟨-, e, refused⟩
      · rw [ok] at added
        cases added
        intro name
        rw [gains.overloads]
        split
        · next here =>
          subst here
          rw [List.map_append, List.nodup_append]
          refine ⟨distinct _, by simp, ?_⟩
          rintro types given _ last rfl
          obtain ⟨g, member, rfl⟩ := List.mem_map.mp given
          exact admits.params g member (by simpa using last)
        · exact distinct name
      · rw [refused] at added
        cases added

/-- The overloads of a library can be told apart. -/
theorem distinct_ofLibrary {library : Library} {r : Registry} (loaded : ofLibrary library = .ok r) :
    r.Distinct := by
  unfold ofLibrary at loaded
  have start : empty.Distinct := fun name => List.nodup_nil
  revert loaded start
  generalize empty = first
  intro loaded start
  induction library generalizing first with
  | nil =>
      cases loaded
      exact start
  | cons s library ih =>
      rw [List.foldlM_cons] at loaded
      cases added : first.register s with
      | error e =>
          rw [added] at loaded
          cases loaded
      | ok next =>
          rw [added] at loaded
          exact ih next loaded (start.register added)

/-- The built-in functions of the standard library. -/
def standard : Registry := (ofLibrary .standard).toOption.getD .empty

end Registry

/-! ## Arguments -/

namespace Check

variable {s : State} {callee : String}

theorem checkConstant_run {e : Expr} (folds : e.foldError? = none) :
    checkConstant e s = .ok true s := by
  unfold checkConstant
  rw [folds]
  rfl

/-- A variable gets the value that its initial value folds to, if that is known. -/
theorem foldInto_run {v : Variable} {e : Expr} (folds : e.foldError? = none) :
    foldInto v e s = .ok { v with
      value := (e.known? v.type).getD v.value
      known := (e.known? v.type).isSome || v.known } s := by
  unfold foldInto
  rw [bind_ok (checkConstant_run folds), if_pos rfl]
  cases e.known? v.type with
  | none => rfl
  | some value => rfl

/-- Arguments that are accepted and folded pass without a report. -/
theorem checkArguments_run {args : List (ValueType × Operand)}
    (right : ∀ a ∈ args, a.2.accepts a.1 s = .ok true s ∧ a.2.expr.foldError? = none)
    (index : Nat) : checkArguments callee index args s = .ok () s := by
  induction args generalizing index with
  | nil => rfl
  | cons a rest ih =>
      obtain ⟨type, o⟩ := a
      obtain ⟨accepted, folds⟩ := right (type, o) List.mem_cons_self
      unfold checkArguments
      rw [bind_ok accepted, if_pos rfl, bind_ok (checkConstant_run folds)]
      exact ih (fun a member => right a (List.mem_cons_of_mem _ member)) (index + 1)

/-- A call with the right number of arguments to a function of the program: the arguments are
checked as they are handed out, and the result is the function's. -/
theorem resolve_user {pos : Pos} {args : List Operand} {f : Function}
    (found : s.symbols.lookup callee = some (.fn f)) (size : args.length = f.params.length) :
    resolve pos callee args s = (checkArguments callee 1
      ((Queues.ofList (·.expr.isBooleanForm) args).assign f.paramTypes) >>= fun _ =>
        pure f.returns.ty) s := by
  unfold resolve
  rw [bind_ok (lookup_run callee s), found]
  dsimp only
  unfold resolveUser
  rw [if_neg (not_not.mpr size)]

theorem argumentTypes_run {types : List ValueType} {args : List Operand}
    (size : types.length = args.length)
    (right : ∀ a ∈ types.zip args, a.2.detect s = .ok ⟨true, .value a.1⟩ s) (index : Nat) :
    argumentTypes callee index args s = .ok (some types) s := by
  induction args generalizing types index with
  | nil =>
      obtain rfl := List.eq_nil_of_length_eq_zero size
      rfl
  | cons o rest ih =>
      cases types with
      | nil => cases size
      | cons type types =>
          have first := right (type, o) List.mem_cons_self
          have others := ih (Nat.succ.inj size)
            (fun a member => right a (List.mem_cons_of_mem _ member)) (index + 1)
          unfold argumentTypes
          rw [bind_ok first]
          simp only [Bool.not_true, Bool.false_eq_true, if_false, Ty.value?_value]
          rw [bind_ok others]
          rfl

end Check

/-! ## Answers -/

open Check

/-- An expression is accepted at a type, and its leaves have that type; nothing is reported. -/
structure Expr.Answers (e : Expr) (s : State) (type : ValueType) : Prop where
  accepts : e.accepts type s = .ok true s
  leaves : ∃ n, e.leaves s = .ok (List.replicate (n + 1) (.value type)) s

namespace Expr

variable {s : State} {type : ValueType} {result : TypeName} {e x y : Expr} {pos : Pos}
  {name : String} {args : List Expr}

theorem Answers.detect (answers : e.Answers s type) : e.detect s = .ok ⟨true, .value type⟩ s := by
  obtain ⟨n, leaves⟩ := answers.leaves
  show (e.leaves >>= fun ls => pure (Detection.ofLeaves ls)) s = _
  rw [bind_ok leaves, Detection.ofLeaves_replicate]
  rfl

theorem Answers.bothAccept (left : x.Answers s type) (right : y.Answers s type) :
    x.operand.bothAccept y.operand type s = .ok true s := by
  show (x.accepts type >>= fun a => y.accepts type >>= fun b => pure (a && b)) s = _
  rw [bind_ok left.accepts, bind_ok right.accepts]
  rfl

/-- Two expressions of one type can be compared by an operator that takes it. -/
theorem Answers.comparison (left : x.Answers s type) (right : y.Answers s type) {op : BinaryOp}
    (pos : Pos) (taken : op.family = .relational → type = .int) :
    checkComparison pos op x.operand y.operand s = .ok true s := by
  have takes : (if op.family = .relational then (Ty.value type).isOrdered
      else (Ty.value type).isComparable) = true := by
    split
    · next relational =>
      rw [taken relational]
      rfl
    · rfl
  unfold checkComparison
  have first : x.operand.detect s = .ok ⟨true, .value type⟩ s := left.detect
  have second : y.operand.detect s = .ok ⟨true, .value type⟩ s := right.detect
  rw [bind_ok first]
  simp only [Bool.not_true, Bool.false_eq_true, if_false]
  rw [bind_ok second]
  simp only [Bool.not_true, Bool.false_eq_true, if_false, ne_eq, not_true_eq_false, takes,
    Ty.value?_value]
  exact left.bothAccept right

/-- A leaf of the type. -/
theorem Answers.leaf (accepts : e.accepts type s = .ok true s)
    (leaves : e.leaves s = .ok [.value type] s) : e.Answers s type :=
  ⟨accepts, 0, leaves⟩

/-- The leaves of an operation are those of its operands. -/
theorem Answers.arithmetic (left : x.Answers s type) (right : y.Answers s type) {op : BinaryOp}
    {pos : Pos} (family : op.family = .arithmetic)
    (accepts : (binary pos op x y).accepts type s = .ok true s) :
    (binary pos op x y).Answers s type := by
  refine ⟨accepts, ?_⟩
  obtain ⟨n, first⟩ := left.leaves
  obtain ⟨m, second⟩ := right.leaves
  have arithmetic : op.isArithmetic = true := by
    rw [BinaryOp.isArithmetic, family]
    rfl
  refine ⟨n + 1 + m, ?_⟩
  rw [Expr.leaves, if_pos arithmetic, bind_ok first, bind_ok second,
    List.replicate_append_replicate]
  rfl

/-- An operation that gives a truth value is a leaf. -/
theorem Answers.truth {op : BinaryOp} (family : op.family ≠ .arithmetic)
    (accepts : (binary pos op x y).accepts .boolie s = .ok true s) :
    (binary pos op x y).Answers s .boolie := by
  refine .leaf accepts ?_
  have other : ¬ op.isArithmetic = true := by
    intro arithmetic
    exact family (by simpa [BinaryOp.isArithmetic] using arithmetic)
  rw [Expr.leaves, if_neg other]
  rfl

theorem Answers.paren (inner : x.Answers s type) (pos : Pos) : (paren pos x).Answers s type := by
  obtain ⟨n, leaves⟩ := inner.leaves
  refine ⟨?_, n, ?_⟩
  · rw [Expr.accepts]
    exact inner.accepts
  · rw [Expr.leaves]
    exact leaves

theorem Answers.negate (inner : x.Answers s .int) (pos : Pos) :
    (unary pos .negate x).Answers s .int := by
  obtain ⟨n, leaves⟩ := inner.leaves
  refine ⟨?_, n, ?_⟩
  · rw [Expr.accepts, if_pos rfl]
    exact inner.accepts
  · rw [Expr.leaves]
    exact leaves

theorem Answers.not (inner : x.Answers s .boolie) (pos : Pos) :
    (unary pos .not x).Answers s .boolie := by
  refine .leaf ?_ ?_
  · rw [Expr.accepts, if_pos rfl]
    exact inner.accepts
  · rw [Expr.leaves]
    rfl

section

variable {op : BinaryOp}

theorem Answers.compute (left : x.Answers s .int) (right : y.Answers s .int)
    (family : op.family = .arithmetic) (pos : Pos) : (binary pos op x y).Answers s .int := by
  refine left.arithmetic right family ?_
  rw [accepts_binary, family]
  exact left.bothAccept right

theorem Answers.concat (left : x.Answers s .string) (right : y.Answers s .string) (pos : Pos) :
    (binary pos .add x y).Answers s .string := by
  refine left.arithmetic right rfl ?_
  rw [accepts_binary]
  exact left.bothAccept right

theorem Answers.logical (left : x.Answers s .boolie) (right : y.Answers s .boolie)
    (family : op.family = .logical) (pos : Pos) : (binary pos op x y).Answers s .boolie := by
  refine .truth (by simp [family]) ?_
  rw [accepts_binary, family]
  exact left.bothAccept right

theorem Answers.relational (left : x.Answers s .int) (right : y.Answers s .int)
    (family : op.family = .relational) (pos : Pos) : (binary pos op x y).Answers s .boolie := by
  refine .truth (by simp [family]) ?_
  rw [accepts_binary, family]
  exact left.comparison right pos fun _ => rfl

theorem Answers.equality (left : x.Answers s type) (right : y.Answers s type)
    (family : op.family = .equality) (pos : Pos) : (binary pos op x y).Answers s .boolie := by
  refine .truth (by simp [family]) ?_
  rw [accepts_binary, family]
  refine left.comparison right pos fun relational => ?_
  rw [family] at relational
  cases relational

end

/-- What is asked of an expression of a type: a value is accepted at its type, and a call is
resolved to its result. -/
structure Settles (e : Expr) (s : State) (type : TypeName) : Prop where
  value : ∀ {t}, type = .value t → e.Answers s t
  call : ∀ {pos name args}, e = .call pos name args →
    resolve pos name (operands args) s = .ok type.ty s

theorem Settles.ofValue (answers : e.Answers s type)
    (other : ∀ pos name args, e ≠ .call pos name args) : e.Settles s (.value type) := by
  refine ⟨fun same => ?_, fun call => absurd call (other _ _ _)⟩
  cases same
  exact answers

/-- A call that is resolved is a leaf of its result. -/
theorem Settles.ofCall (run : resolve pos name (operands args) s = .ok result.ty s) :
    (Expr.call pos name args).Settles s result := by
  refine ⟨?_, ?_⟩
  · rintro type rfl
    refine .leaf ?_ ?_
    · rw [Expr.accepts, bind_ok run]
      simp [TypeName.ty, pure_run]
    · rw [Expr.leaves, bind_ok run]
      rfl
  · intro pos' name' args' same
    cases same
    exact run

theorem Settles.user {f : Function} (found : s.symbols.lookup name = some (.fn f))
    (size : args.length = f.params.length) (zeroFree : ∀ a ∈ args, a.ZeroFree)
    (right : ∀ a ∈ (Queues.ofList isBooleanForm args).assign f.paramTypes,
      a.2.Answers s a.1) :
    (Expr.call pos name args).Settles s f.returns := by
  refine .ofCall ?_
  have count : (operands args).length = f.params.length := by
    rw [operands_eq_map, List.length_map, size]
  have passed : checkArguments name 1
      ((Queues.ofList (·.expr.isBooleanForm) (operands args)).assign f.paramTypes) s =
      .ok () s := by
    refine checkArguments_run (fun o given => ?_) 1
    rw [assign_operands] at given
    obtain ⟨a, handed, rfl⟩ := List.mem_map.mp given
    have free := zeroFree a.2 (Queues.mem_of_mem_assign handed)
    exact ⟨(right a handed).accepts, (a.2.zeroFree_iff.mp free).1⟩
  rw [resolve_user found count, bind_ok passed]
  rfl

theorem Settles.builtin {f : Function} (missing : s.symbols.lookup name = none)
    (distinct : s.symbols.builtins.Distinct) (member : f ∈ s.symbols.builtins.overloads name)
    (size : args.length = f.params.length) (zeroFree : ∀ a ∈ args, a.ZeroFree)
    (right : ∀ a ∈ f.paramTypes.zip args, a.2.Answers s a.1) :
    (Expr.call pos name args).Settles s f.returns := by
  refine .ofCall ?_
  have count : f.paramTypes.length = (operands args).length := by
    rw [f.length_paramTypes, operands_eq_map, List.length_map, size]
  have handed : ∀ a ∈ f.paramTypes.zip (operands args),
      ∃ e, a.2 = e.operand ∧ e ∈ args ∧ e.Answers s a.1 := by
    intro o given
    rw [operands_eq_map, List.zip_map_right] at given
    obtain ⟨a, handed, rfl⟩ := List.mem_map.mp given
    exact ⟨a.2, rfl, (List.of_mem_zip handed).2, right a handed⟩
  have types : argumentTypes name 1 (operands args) s = .ok (some f.paramTypes) s := by
    refine argumentTypes_run count (fun a given => ?_) 1
    obtain ⟨e, same, -, answers⟩ := handed a given
    rw [same]
    exact answers.detect
  have passed : checkArguments name 1 (f.paramTypes.zip (operands args)) s = .ok () s := by
    refine checkArguments_run (fun a given => ?_) 1
    obtain ⟨e, same, listed, answers⟩ := handed a given
    rw [same]
    exact ⟨answers.accepts, (e.zeroFree_iff.mp (zeroFree e listed)).1⟩
  obtain ⟨o, listed⟩ := Option.isSome_iff_exists.mp (Registry.contains_of_mem_overloads member)
  unfold resolve
  rw [bind_ok (lookup_run name s), missing]
  dsimp only
  rw [bind_ok (symbols_run s), listed]
  dsimp only
  unfold resolveBuiltin
  rw [bind_ok types]
  dsimp only
  rw [bind_ok (symbols_run s), Registry.matching?_of_mem distinct member]
  dsimp only
  rw [bind_ok passed]
  rfl

/-- What has a type by the rules is settled by the check, which folds nothing but arguments. -/
theorem Asked.settles (asked : e.Asked s.symbols.bindings result)
    (distinct : s.symbols.builtins.Distinct) : e.Settles s result := by
  obtain ⟨typed, free⟩ := asked
  induction typed with
  | int => exact .ofValue (.leaf (by rw [accepts]; rfl) (by rw [Expr.leaves]; rfl)) (by simp)
  | string => exact .ofValue (.leaf (by rw [accepts]; rfl) (by rw [Expr.leaves]; rfl)) (by simp)
  | boolie => exact .ofValue (.leaf (by rw [accepts]; rfl) (by rw [Expr.leaves]; rfl)) (by simp)
  | @ident pos name v found =>
      have known : identifier pos name s = .ok (some (.var v)) s := by
        unfold identifier
        rw [bind_ok (lookup_run name s), show s.symbols.lookup name = some (.var v) from found]
        rfl
      refine .ofValue (.leaf ?_ ?_) (by simp)
      · rw [accepts, bind_ok known]
        simp [Symbol.type, pure_run]
      · rw [Expr.leaves, bind_ok known]
        rfl
  | negate _ ih => exact .ofValue (((ih free).value rfl).negate _) (by simp)
  | not _ ih => exact .ofValue (((ih free).value rfl).not _) (by simp)
  | arithmetic family _ _ left right =>
      exact .ofValue (((left free.1).value rfl).compute ((right free.2).value rfl) family _)
        (by simp)
  | concat _ _ left right =>
      exact .ofValue (((left free.1).value rfl).concat ((right free.2).value rfl) _) (by simp)
  | logical family _ _ left right =>
      exact .ofValue (((left free.1).value rfl).logical ((right free.2).value rfl) family _)
        (by simp)
  | relational family _ _ left right =>
      exact .ofValue (((left free.1).value rfl).relational ((right free.2).value rfl) family _)
        (by simp)
  | equality family _ _ left right =>
      exact .ofValue (((left free.1).value rfl).equality ((right free.2).value rfl) family _)
        (by simp)
  | paren _ ih => exact ⟨fun same => ((ih free).value same).paren _, by simp⟩
  | user found size _ ih =>
      refine .user found size free fun a handed => ?_
      -- an argument is folded as a whole, so nothing in it divides by zero
      have folds := free a.2 (Queues.mem_of_mem_assign handed)
      exact (ih a handed (a.2.zeroFree_iff.mp folds).2).value rfl
  | builtin missing member size _ ih =>
      refine .builtin missing distinct member size free fun a handed => ?_
      have folds := free a.2 (List.of_mem_zip handed).2
      exact (ih a handed (a.2.zeroFree_iff.mp folds).2).value rfl

theorem Sane.settles (sane : e.Sane s.symbols.bindings result)
    (distinct : s.symbols.builtins.Distinct) : e.Settles s result :=
  Asked.settles ⟨sane.typed, (e.zeroFree_iff.mp sane.zeroFree).2⟩ distinct

/-- An expression of a type is accepted at it. -/
theorem Sane.answers (sane : e.Sane s.symbols.bindings (.value type))
    (distinct : s.symbols.builtins.Distinct) : e.Answers s type := (sane.settles distinct).value rfl

/-- A call that has a type is resolved to it. -/
theorem Sane.resolves (sane : (Expr.call pos name args).Sane s.symbols.bindings result)
    (distinct : s.symbols.builtins.Distinct) :
    resolve pos name (operands args) s = .ok result.ty s := (sane.settles distinct).call rfl

theorem Sane.folds {Γ : Bindings} (sane : e.Sane Γ result) :
    e.foldError? = none := (e.zeroFree_iff.mp sane.zeroFree).1

end Expr

end Samo
