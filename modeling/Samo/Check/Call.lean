import Samo.Check.Basic

/-!
# Calls

How a call is checked against the function it names. An `Operand` is an expression with the two
questions that can be asked of it, so that the rules here need not know how they are answered.

The arguments of a call to a function of the program are not matched by place alone: a `boolie`
parameter takes the next argument in boolean form, any other parameter the next one that is not, and
only when there is none left the next one of the other kind (`Queues.next?`).
-/

namespace Samo

/-- An expression, the types of its leaves, and whether it is an expression of a type. -/
structure Operand where
  expr : Expr
  leaves : Check (List Ty)
  accepts : ValueType → Check Bool

namespace Operand

/-- What the leaves of the expression say. -/
def detect (o : Operand) : Check Detection := return .ofLeaves (← o.leaves)

/-- Whether both are of a type. Both are always asked. -/
def bothAccept (x y : Operand) (type : ValueType) : Check Bool := do
  let left ← x.accepts type
  let right ← y.accepts type
  return left && right

end Operand

/-! ## Matching arguments with parameters -/

/-- Arguments that wait for a parameter: those in boolean form and the others. -/
structure Queues (α : Type) where
  bools : List α
  plain : List α
deriving DecidableEq, Repr

namespace Queues

/-- The arguments of a call. -/
def ofList {α : Type} (isBool : α → Bool) (args : List α) : Queues α :=
  ⟨args.filter isBool, args.filter (!isBool ·)⟩

/-- The argument for a parameter of a type, and the arguments that are left. -/
def next? {α : Type} (type : ValueType) (q : Queues α) : Option (α × Queues α) :=
  match type, q.bools, q.plain with
  | .boolie, a :: bools, plain => some (a, ⟨bools, plain⟩)
  | .boolie, [], a :: plain => some (a, ⟨[], plain⟩)
  | .boolie, [], [] => none
  | _, bools, a :: plain => some (a, ⟨bools, plain⟩)
  | _, a :: bools, [] => some (a, ⟨bools, []⟩)
  | _, [], [] => none

/-- The parameter types with their arguments, in the order of the parameters. -/
def assign {α : Type} : List ValueType → Queues α → List (ValueType × α)
  | [], _ => []
  | t :: ts, q =>
    match q.next? t with
    | none => []
    | some (a, q) => (t, a) :: assign ts q

end Queues

/-! ## Checking arguments -/

namespace Check

/-- Checks arguments against types; `index` is the number of the first one. -/
def checkArguments (callee : String) : Nat → List (ValueType × Operand) → Check Unit
  | _, [] => return ()
  | index, (type, a) :: rest => do
    if ← a.accepts type then
      let _ ← checkConstant a.expr
    else
      fatal a.expr.start (.argumentMismatch callee index type)
    checkArguments callee (index + 1) rest

/-- The types of arguments, as long as each has one; `index` is the number of the first one. -/
def argumentTypes (callee : String) : Nat → List Operand → Check (Option (List ValueType))
  | _, [] => return some []
  | index, a :: rest => do
    let d ← a.detect
    if !d.homogeneous then
      fatal a.expr.start (.argumentMixed callee index)
      return none
    else
      match d.type.value? with
      | none =>
        fatal a.expr.start (.argumentType callee index d.type)
        return none
      | some type => return (← argumentTypes callee (index + 1) rest).map (type :: ·)

/-- A call to a function of the program. Its type is the function's result, whatever happens. -/
def resolveUser (pos : Pos) (callee : String) (f : Function) (args : List Operand) : Check Ty := do
  if args.length ≠ f.params.length then
    fatal pos (.argumentCount callee f.params.length args.length)
  else
    let queues := Queues.ofList (·.expr.isBooleanForm) args
    checkArguments callee 1 (queues.assign f.paramTypes)
  return f.returns.ty

/-- A call to a built-in function: the types of the arguments select the overload. -/
def resolveBuiltin (pos : Pos) (callee : String) (o : Overloads) (args : List Operand) :
    Check Ty := do
  match ← argumentTypes callee 1 args with
  | none => return o.first.returns.ty
  | some types =>
    match (← symbols).builtins.matching? callee (paramDescriptor (types.map .value)) with
    | .error ambiguous =>
      fatal pos (.ambiguousOverload ambiguous)
      return o.first.returns.ty
    | .ok none =>
      fatal pos (.noOverload callee o.all)
      return o.first.returns.ty
    | .ok (some f) =>
      checkArguments callee 1 (types.zip args)
      return f.returns.ty

/-- A call. A name of the program hides a built-in function. -/
def resolve (pos : Pos) (callee : String) (args : List Operand) : Check Ty := do
  match ← lookup callee with
  | some (.fn f) => resolveUser pos callee f args
  | some (.var v) =>
    fatal pos (.notCallable callee (.value v.type))
    return .thing
  | none =>
    match (← symbols).builtins.overloads? callee with
    | some o => resolveBuiltin pos callee o args
    | none =>
      fatal pos (.unknownFunction callee)
      return .thing

end Check

end Samo
